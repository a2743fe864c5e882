/-!
# The shortest decimal that reads back

A finite double other than zero is `m · 2 ^ q`. The real numbers that are read as this double form
an interval around it, from half-way to the neighbour below to half-way to the neighbour above; its
ends belong to it when `m` is even, because a reader breaks ties that way. `shortest m q` looks for
a decimal `c · 10 ^ e` in that interval on ever finer grids, one significant digit more each time.
On each grid it tests the two points next to the value; the nearer of two hits is taken, the upper
one when both are equally near. The seventeenth grid is fine enough to have a hit always, so on it
the search needs no further way out.

All comparisons are between natural numbers: the interval is kept as three numerators over one
denominator, and a grid as its unit's numerator and denominator.
-/

set_option autoImplicit false
set_option relaxedAutoImplicit false

namespace Multimethod.Decimal

/-! ### The interval that reads back -/

/-- A value with the interval of reals that are read as it: numerators over one denominator. -/
structure Interval where
  lower : Nat
  value : Nat
  upper : Nat
  denominator : Nat
  /-- Whether the two ends belong to the interval. -/
  closed : Bool

/-- The neighbour below is at half the distance of the neighbour above: the value is a power of two
and not among the smallest ones, which are evenly spaced. -/
def isNarrowBelow (m : Nat) (q : Int) : Bool :=
  m == Nat.pow 2 52 && decide (-1074 < q)

/-- The interval around `m · 2 ^ q`, in quarters of the unit `2 ^ q`. -/
def Interval.around (m : Nat) (q : Int) : Interval where
  lower := (4 * m - if isNarrowBelow m q then 1 else 2) * Nat.pow 2 (q - 2).toNat
  value := 4 * m * Nat.pow 2 (q - 2).toNat
  upper := (4 * m + 2) * Nat.pow 2 (q - 2).toNat
  denominator := Nat.pow 2 (2 - q).toNat
  closed := m % 2 == 0

/-- Whether the quotient `above / below` lies in the interval. -/
def Interval.contains (i : Interval) (above below : Nat) : Bool :=
  if i.closed then
    decide (i.lower * below ≤ above * i.denominator ∧ above * i.denominator ≤ i.upper * below)
  else
    decide (i.lower * below < above * i.denominator ∧ above * i.denominator < i.upper * below)

/-! ### Points of a decimal grid -/

/-- The numerator of `10 ^ e`. -/
def unitAbove (e : Int) : Nat :=
  Nat.pow 10 e.toNat

/-- The denominator of `10 ^ e`. -/
def unitBelow (e : Int) : Nat :=
  Nat.pow 10 (-e).toNat

/-- The last point of the grid `10 ^ e` that is not above the value, counted in units. -/
def Interval.floor (i : Interval) (e : Int) : Nat :=
  i.value * unitBelow e / (i.denominator * unitAbove e)

/-- Whether the value is nearer to its floor on the grid than to the next point. -/
def Interval.nearFloor (i : Interval) (e : Int) : Bool :=
  decide (2 * i.value * unitBelow e < (2 * i.floor e + 1) * unitAbove e * i.denominator)

/-- The point of the grid next to the value, the upper one of two that are equally near. -/
def Interval.round (i : Interval) (e : Int) : Nat :=
  if i.nearFloor e then i.floor e else i.floor e + 1

/-- The point of the grid `10 ^ e` to write for the value, if one of its two neighbours reads
back. -/
def Interval.hit? (i : Interval) (e : Int) : Option Nat :=
  match i.contains (i.floor e * unitAbove e) (unitBelow e),
      i.contains ((i.floor e + 1) * unitAbove e) (unitBelow e) with
  | true, true => some (i.round e)
  | true, false => some (i.floor e)
  | false, true => some (i.floor e + 1)
  | false, false => none

/-- The first hit among so many finer and finer grids, and the nearest point of the last one. -/
def Interval.search (i : Interval) : Nat → Int → Nat × Int
  | 0, e => (i.round e, e)
  | grids + 1, e =>
    match i.hit? e with
    | some c => (c, e)
    | none => i.search grids (e - 1)

/-! ### The search -/

/-- The number of decimal digits of a positive number. -/
def digitCount (n : Nat) : Nat :=
  (Nat.toDigits 10 n).length

/-- The exponent of the value's first significant digit: `10 ^ e ≤ value < 10 ^ (e + 1)`. -/
def Interval.leadingExponent (i : Interval) : Int :=
  if i.denominator ≤ i.value then
    (digitCount (i.value / i.denominator) : Int) - 1
  else
    -(digitCount ((i.denominator - 1) / i.value) : Int)

/-- The significant digits and the exponent of the shortest decimal that is read as `m · 2 ^ q`. -/
def shortest (m : Nat) (q : Int) : Nat × Int :=
  let interval := Interval.around m q
  interval.search 16 interval.leadingExponent

end Multimethod.Decimal
