/-!
# Arities

The arity of a signature says which numbers of arguments it takes. Arities are ordered as calls try
them: exact ones before open ones, and either kind by ascending count.
-/

set_option autoImplicit false
set_option relaxedAutoImplicit false

namespace Multimethod

/-- The numbers of arguments that a signature takes. -/
inductive Arity where
  /-- So many arguments. -/
  | exact (count : Nat)
  /-- So many arguments or more. -/
  | atLeast (count : Nat)
  deriving DecidableEq, Repr

namespace Arity

/-- Whether a call with so many arguments has this arity. -/
def accepts : Arity → Nat → Bool
  | .exact count, given => given == count
  | .atLeast count, given => decide (count ≤ given)

/-- The number of slots that it takes to declare the arity. -/
def slotCount : Arity → Nat
  | .exact count => count
  | .atLeast count => count

/-- The arity in messages. -/
def text : Arity → String
  | .exact count => Nat.repr count
  | .atLeast count => Nat.repr count ++ " or more"

/-- Whether calls try the first arity before the second. -/
def precedes : Arity → Arity → Bool
  | .exact m, .exact n => decide (m < n)
  | .exact _, .atLeast _ => true
  | .atLeast _, .exact _ => false
  | .atLeast m, .atLeast n => decide (m < n)

end Arity

end Multimethod
