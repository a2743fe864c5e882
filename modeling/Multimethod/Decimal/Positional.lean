import Multimethod.Decimal.Shortest

/-!
# Number texts

`numberText` writes a double for a reader: the shortest digits that read back as the same double,
always in positional notation and never with an exponent. An integral number has no decimal point,
zero keeps its sign, and the values that are no numbers are spelled `NaN`, `inf` and `-inf`.
-/

set_option autoImplicit false
set_option relaxedAutoImplicit false

namespace Multimethod.Decimal

/-- The digits without the zeros at their end. -/
def withoutTrailingZeros (digits : List Char) : List Char :=
  (digits.reverse.dropWhile (· == '0')).reverse

/-- The decimal `c · 10 ^ e` in positional notation. -/
def positional (c : Nat) (e : Int) : List Char :=
  let digits := Nat.toDigits 10 c
  if 0 ≤ e then
    digits ++ List.replicate e.toNat '0'
  else
    let places := (-e).toNat
    let padded := List.replicate (places + 1 - digits.length) '0' ++ digits
    let whole := padded.take (padded.length - places)
    match withoutTrailingZeros (padded.drop (padded.length - places)) with
    | [] => whole
    | fraction => whole ++ '.' :: fraction

/-- A text with the sign of a number before it. -/
def signed (sign : Float.Model.UnpackedFloat.Sign) (text : List Char) : List Char :=
  match sign with
  | .positive => text
  | .negative => '-' :: text

/-- The text of a double. -/
def numberText (x : Float) : String :=
  String.ofList <|
    match x.toModel.unpack with
    | .notANumber => ['N', 'a', 'N']
    | .infinity sign => signed sign ['i', 'n', 'f']
    | .zero sign => signed sign ['0']
    | .finite sign m q _ => signed sign (positional (shortest m q).1 (shortest m q).2)

end Multimethod.Decimal
