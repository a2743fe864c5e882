import Multimethod.Plan

/-!
# Where a call stops

When a plan finds no clause, every way through it stops somewhere. `Plan.stops` lists these places
in the order in which they are tried: each branch that is reached with an argument left, with the
types it expects, and each arm that refuses one of the remaining arguments, with its alternatives.
`Frontier.ofStops` keeps those at the greatest position; they make the report for the user.
-/

set_option autoImplicit false
set_option relaxedAutoImplicit false

namespace Multimethod

/-- An argument that may be the one to blame, and the types expected for it. -/
structure Stop where
  position : Nat
  expected : List String
  deriving DecidableEq, Repr

/-- The stop of an arm that refuses one of the arguments from a position on. -/
def Arm.stop? (position : Nat) (values : List Value) (arm : Arm) : Option Stop :=
  (values.findIdx? fun value ↦ (arm.take value).isNone).map
    fun offset ↦ ⟨position + offset, arm.names⟩

/-- The places that a plan reaches with the arguments from a position on, in the order in which they
are tried. -/
def Plan.stops : Plan → Nat → List Value → List Stop
  | .done _, _, _ => []
  | .branch _, _, [] => []
  | .branch steps, position, value :: values =>
    ⟨position, steps.filterMap (·.1.expected?)⟩ ::
      steps.flatMap fun step ↦
        if (step.1.take value).isSome then stops step.2 (position + 1) values else []
  | .collect arms, position, values => arms.filterMap (Arm.stop? position values)

/-- The greatest position among some stops, and the types expected there, each once. -/
structure Frontier where
  position : Option Nat
  expected : List String
  deriving DecidableEq, Repr

namespace Frontier

/-- Nothing is reached. -/
def start : Frontier :=
  ⟨none, []⟩

/-- One more stop: it is left out if it is nearer, joins the others if it is as far, and replaces
them if it is further. -/
def advance (frontier : Frontier) (stop : Stop) : Frontier :=
  match frontier.position with
  | none => ⟨some stop.position, addNames [] stop.expected⟩
  | some position =>
    if stop.position < position then frontier
    else if stop.position = position then
      { frontier with expected := addNames frontier.expected stop.expected }
    else ⟨some stop.position, addNames [] stop.expected⟩

/-- The furthest of some stops. -/
def ofStops (stops : List Stop) : Frontier :=
  stops.foldl advance start

end Frontier

end Multimethod
